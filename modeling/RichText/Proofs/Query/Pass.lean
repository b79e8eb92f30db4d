/-
  RichText/Proofs/Query/Pass.lean
  ===============================
  **A layout that is told to stop reports nothing more.**

  A layout can report each line to a `Sink` when it sets it, in place of gathering the lines
  first.  A sink that has seen enough says so at a glyph.  The line is then left as it is,
  half reported and with nothing carried over; the token that ended it is carried out to its
  end all the same, and no further token is taken.  This is the `Pass`: it goes through the
  operations of a layout once more, with a sink in place of the lines.

  An operation sets at most one line, so what it does after a stop comes to nothing, and a
  pass gives every sink what a traversal of all lines would (`Printer.pass_eq`).  A record
  that stops early is thus the first part of the whole one (`Printer.stopping_truncates`).
-/
import RichText.Proofs.Layout.Steps
import RichText.Proofs.Query.Stopping

namespace RichText

variable {σ : Type}

/-! ### Sinks -/

/-- Something that takes the items of a layout as they come. -/
structure Sink (σ : Type) where
  /-- Takes a glyph, and may end the layout there. -/
  glyph : σ → Glyph → Flow σ
  /-- Takes a box, a rule or an image. -/
  other : σ → Item → σ

namespace Sink

/-- The traversal that gives a sink all items. -/
def traversal (k : Sink σ) : Traversal σ := fun s item =>
  match item with
  | .glyph g => k.glyph s g
  | item => .more (k.other s item)

/-- Keeps all that it is given, the last item first, and stops at the `n`-th glyph if `n` is
    given. What it were given after that it would keep, too. -/
def recorder (stopAfter : Option Nat) : Sink (List Item × Nat) where
  glyph := fun (seen, n) g =>
    if stopAfter.any (· ≤ n + 1) then .done (.glyph g :: seen, n + 1)
    else .more (.glyph g :: seen, n + 1)
  other := fun (seen, n) item => (item :: seen, n)

theorem traversal_recorder (stopAfter : Option Nat) :
    (recorder stopAfter).traversal = Query.record stopAfter := by
  funext s item
  cases item <;> rfl

/-- Items without glyphs are all taken. -/
theorem items_of_no_glyph (k : Sink σ) {is : List Item} (h : ∀ i ∈ is, i.glyph? = none) (s : σ) :
    k.traversal.items s is = .more (is.foldl k.other s) := by
  induction is generalizing s with
  | nil => rfl
  | cons i is ih =>
    have hrest := ih fun j hj => h j (List.mem_cons_of_mem i hj)
    have hi := h i List.mem_cons_self
    cases i with
    | glyph g => cases hi
    | box bounds background border color => exact hrest _
    | rule left right y thickness color => exact hrest _
    | image index i bounds tint fit => exact hrest _

end Sink

/-! ### Passes -/

/-- A layout that reports its lines as it sets them. -/
structure Pass (σ : Type) where
  state : LayoutState
  sink : σ
  /-- The regions known so far. -/
  regions : List Region
  /-- Whether the sink has ended the layout. -/
  stopped : Bool

namespace Pass

variable (job : Job) (k : Sink σ) (p : Pass σ)

/-- Before the first token. -/
def start (font : Font) (sink : σ) : Pass σ := ⟨.initial job font, sink, [], false⟩

/-- Something that reports nothing. -/
def update (f : LayoutState → LayoutState) : Pass σ := { p with state := f p.state }

/-! #### Lines -/

/-- Sets the first `content` marks as a line and reports it. If the sink stops, then the marks
    stay, the set ones in their places. -/
def commit (content : Nat) (reason : LineEnd) : Pass σ :=
  let s := p.state
  let cut := s.cut content reason
  let l := s.setLine job content cut reason
  let line := l.line s job.printer.images
  match k.traversal.items (line.boxes.foldl k.other p.sink) line.glyphs with
  | .done sink =>
    { p with
      state := { s with marks := (l.marks ++ s.marks.toList.drop cut).toArray }
      sink := sink
      stopped := true }
  | .more sink =>
    { p with
      state := s.commit job content reason
      sink := line.rules.foldl k.other sink
      regions := p.regions ++ line.regions }

def commitAll (reason : LineEnd) : Pass σ := p.commit job k p.state.marks.size reason

def finishLine (reason : LineEnd) : Pass σ :=
  if p.state.lineIsEmpty then p else p.commitAll job k reason

def checkWrap : Pass σ :=
  if p.state.Overflows job then p.commit job k p.state.breakAt .wrap else p

/-! #### Marks -/

def addMark (code : Nat) (kind : MarkKind) (advance : Int) (index : Nat) : Pass σ :=
  (p.update (·.pushMark job code kind advance index)).checkWrap job k

def place (c : Nat) (index : Nat) : Pass σ :=
  let (advance, visible) :=
    ((p.state.beginLine job).noteBreak (CodePoint.isBreaking c)).textAdvance job c
  let p := p.update (·.beforeMark job c)
  let p := p.addMark job k c (.glyph visible) advance index
  p.update fun s => s.noteBreak (s.breaking.contains c)

def newline (c : Nat) (index : Nat) : Pass σ :=
  let p := p.update (·.pushMark job c .lineEnd 0 index)
  p.commitAll job k (if p.state.table.isSome then .row else .newline (CodePoint.startsParagraph c))

def placePlaceholder (index : Nat) : Pass σ :=
  p.addMark job k CodePoint.placeholder .placeholder p.state.placeholder.width index

def placeSpace (width : Int) (index : Nat) : Pass σ := p.addMark job k 0 (.glyph false) width index

def placeImage (i : ImageSetting) (index : Nat) : Pass σ :=
  (job.printer.images.get? i.index.val).elim p fun image =>
    let mark := p.state.imageMark i image
    p.addMark job k CodePoint.placeholder (.image mark) mark.advance index

/-! #### Tables -/

def endRow : Pass σ :=
  if p.state.table.isSome then (p.update (·.beginLine job)).commitAll job k .row else p

def beginTable (t : Table) : Pass σ :=
  (p.finishLine job k (.newline false)).update ({ · with table := some t })

def endTable : Pass σ :=
  if p.state.table.isSome then
    (p.finishLine job k .row).update ({ · with table := none, lineStarted := false })
  else p

/-! #### Tokens -/

def applySetting (index : Nat) : Setting → Pass σ
  | .length .horizontalSpace (some l) =>
    p.placeSpace job k (l.resolveWith p.state.font.face.em p.state.wrapWidth) index
  | .image i => p.placeImage job k i index
  | .beginTable border width columns =>
    p.beginTable job k (p.state.newTable job border width columns)
  | setting => p.update (·.applySetting job index setting)

def applySwitch : Switch → Pass σ
  | .endTable => p.endTable job k
  | w => p.update (·.applySwitch job w)

def apply (index : Nat) : Instruction → Pass σ
  | .toggle t => p.update (·.applyToggle job t)
  | .switch w => p.applySwitch job k w
  | .setting setting => p.applySetting job k index setting

def step (l : Lexeme) : Pass σ :=
  match l.token with
  | .text c => p.place job k c l.index
  | .newline c => p.newline job k c l.index
  | .placeholder => p.placePlaceholder job k l.index
  | .row => p.endRow job k
  | .cell => p.update (·.nextCell job)
  | .instruction i => p.apply job k l.index i
  | .nothing => p

/-- Takes one token after another until the sink stops. -/
def run : Pass σ → List Lexeme → Pass σ
  | p, [] => p
  | p, l :: ls => if (p.step job k l).stopped then p.step job k l else run (p.step job k l) ls

/-- Reports the last line, unless the sink has stopped. -/
def finish (total : Nat) : Pass σ :=
  if p.stopped then p
  else
    match p.state.wrapped.filter fun _ => p.state.lineIsEmpty with
    | some w => { p with sink := (k.glyph p.sink (p.state.wrappedEnd w total)).state }
    | none => (p.update (·.pushMark job 0 .textEnd 0 total)).commitAll job k .text

end Pass

/-- Lays out a markup for a sink. -/
def Printer.pass (printer : Printer) (markup : List UInt8) (origin : Point) (width : Int)
    (k : Sink σ) (initial : σ) : Except LayoutError (σ × List Region) :=
  match printer.fonts.get? printer.defaultFont with
  | none => .error (.missingDefaultFont printer.defaultFont)
  | some font =>
    let job := ⟨printer, origin, width⟩
    let cs := Codec.decode markup
    let p := ((Pass.start job font initial).run job k (lexemes cs)).finish job k cs.length
    .ok (p.sink, p.regions)

/-! ### A pass and a layout -/

namespace Pass

variable {job : Job} {k : Sink σ} {initial : σ} {s : LayoutState} {p : Pass σ}

/-- Up to its stop, a pass is at the state of the layout and its sink has taken the lines so
    far; whatever lines follow, a traversal of all of them gives what the sink and those
    give.  From its stop on, no line that follows makes a difference. -/
structure Follows (k : Sink σ) (initial : σ) (s : LayoutState) (p : Pass σ) : Prop where
  state : p.stopped = false → p.state = s
  running : p.stopped = false → ∀ more, k.traversal.lines initial (s.lines.toList ++ more) =
    ((k.traversal.lines p.sink more).1, p.regions ++ (k.traversal.lines p.sink more).2)
  stopped : p.stopped = true → ∀ more,
    k.traversal.lines initial (s.lines.toList ++ more) = (p.sink, p.regions)

theorem follows_start (k : Sink σ) (initial : σ) (job : Job) (font : Font) :
    Follows k initial (start job font initial).state (start job font initial) :=
  ⟨fun _ => rfl, fun _ _ => rfl, fun h => nomatch h⟩

theorem Follows.update (h : Follows k initial s p) {f : LayoutState → LayoutState}
    (hf : (f s).lines = s.lines) : Follows k initial (f s) (p.update f) where
  state := fun hrun => congrArg f (h.state hrun)
  running := hf ▸ h.running
  stopped := hf ▸ h.stopped

/-- A line is reported as a traversal goes through it. -/
theorem lines_line (k : Sink σ) (sink : σ) (l : SetLine) (s : LayoutState)
    (images : Registry Image) (more : List Line) :
    k.traversal.lines sink (l.line s images :: more) =
      match k.traversal.items ((l.boxes s images).foldl k.other sink) l.glyphs with
      | .done sink => (sink, [])
      | .more sink =>
        ((k.traversal.lines ((l.rules s).foldl k.other sink) more).1,
          l.regions s ++ (k.traversal.lines ((l.rules s).foldl k.other sink) more).2) := by
  have hboxes := k.items_of_no_glyph (SetLine.no_glyph_boxes images (l := l) (s := s)) sink
  simp only [SetLine.line, Traversal.lines, Traversal.items_append, hboxes]
  cases k.traversal.items ((l.boxes s images).foldl k.other sink) l.glyphs with
  | done sink => rfl
  | more sink =>
    have hrules := k.items_of_no_glyph (SetLine.no_glyph_rules (l := l) (s := s)) sink
    simp only [hrules]

/-- A line that is set while the pass runs joins those that are reported, or the pass stops
    there. -/
theorem Follows.commit (h : Follows k initial p.state p) (hrun : p.stopped = false) (job : Job)
    (content : Nat) (reason : LineEnd) :
    Follows k initial (p.state.commit job content reason) (p.commit job k content reason) := by
  obtain ⟨-, hlines, -⟩ := LayoutState.commit_frame job p.state content reason
  -- All lines are those before, this one and those that follow.
  have hsplit : ∀ more, (p.state.commit job content reason).lines.toList ++ more =
      p.state.lines.toList ++
        ((p.state.setLine job content (p.state.cut content reason) reason).line p.state
          job.printer.images :: more) := by
    intro more
    rw [hlines, Array.toList_push, List.append_assoc, List.singleton_append]
  have hall := fun more => (congrArg (k.traversal.lines initial) (hsplit more)).trans
    (h.running hrun _)
  simp only [lines_line] at hall
  simp only [Pass.commit, SetLine.line]
  generalize k.traversal.items (((p.state.setLine job content (p.state.cut content reason)
    reason).boxes p.state job.printer.images).foldl k.other p.sink) (p.state.setLine job content
      (p.state.cut content reason) reason).glyphs = flow at hall
  cases flow with
  | done sink =>
    refine ⟨fun h => (nomatch h), fun h => (nomatch h), fun _ more => ?_⟩
    rw [hall, List.append_nil]
  | more sink =>
    refine ⟨fun _ => rfl, fun _ more => ?_, fun h => absurd h (hrun ▸ Bool.false_ne_true)⟩
    rw [hall, List.append_assoc]

theorem Follows.finishLine (h : Follows k initial p.state p) (hrun : p.stopped = false) (job : Job)
    (reason : LineEnd) :
    Follows k initial (p.state.finishLine job reason) (p.finishLine job k reason) := by
  simp only [Pass.finishLine, LayoutState.finishLine]
  split
  · exact h
  · exact h.commit hrun job p.state.marks.size reason

theorem Follows.checkWrap (h : Follows k initial p.state p) (hrun : p.stopped = false)
    (job : Job) : Follows k initial (p.state.checkWrap job) (p.checkWrap job k) := by
  simp only [Pass.checkWrap]
  split
  · next hover =>
    rw [LayoutState.checkWrap_of_overflows hover]
    exact h.commit hrun job p.state.breakAt .wrap
  · next hfit =>
    rw [LayoutState.checkWrap_of_not_overflows hfit]
    exact h

/-! #### Marks -/

theorem Follows.pushMark (h : Follows k initial p.state p) (job : Job) (code : Nat)
    (kind : MarkKind) (advance : Int) (index : Nat) :
    let q := p.update (·.pushMark job code kind advance index)
    Follows k initial q.state q :=
  h.update (f := (·.pushMark job code kind advance index))
    (LayoutState.pushMark_frame job p.state code kind advance index).1

theorem Follows.addMark (h : Follows k initial p.state p) (hrun : p.stopped = false) (job : Job)
    (code : Nat) (kind : MarkKind) (advance : Int) (index : Nat) :
    Follows k initial (p.state.addMark job code kind advance index)
      (p.addMark job k code kind advance index) := by
  have hmark := h.pushMark job code kind advance index
  exact hmark.checkWrap hrun job

theorem Follows.place (h : Follows k initial p.state p) (hrun : p.stopped = false) (job : Job)
    (c index : Nat) : Follows k initial (p.state.place job c index) (p.place job k c index) := by
  have hbefore : Follows k initial (p.update (·.beforeMark job c)).state
      (p.update (·.beforeMark job c)) := by
    refine h.update (f := (·.beforeMark job c)) ?_
    exact (LayoutState.beforeMark_frame job p.state c).2.1
  have hmark := hbefore.addMark hrun job c
    (.glyph (((p.state.beginLine job).noteBreak (CodePoint.isBreaking c)).textAdvance job c).2)
    (((p.state.beginLine job).noteBreak (CodePoint.isBreaking c)).textAdvance job c).1 index
  -- What follows the mark notes a place for a break, also where the pass has just stopped.
  rw [LayoutState.place_eq]
  refine hmark.update (f := fun s => s.noteBreak (s.breaking.contains c)) ?_
  exact (LayoutState.noteBreak_frame _ _).2.1

theorem Follows.newline (h : Follows k initial p.state p) (hrun : p.stopped = false) (job : Job)
    (c index : Nat) :
    Follows k initial (p.state.newline job c index) (p.newline job k c index) := by
  have hmark := h.pushMark job c .lineEnd 0 index
  exact hmark.commit hrun job _ _

theorem Follows.placeImage (h : Follows k initial p.state p) (hrun : p.stopped = false) (job : Job)
    (i : ImageSetting) (index : Nat) :
    Follows k initial (p.state.placeImage job i index) (p.placeImage job k i index) := by
  simp only [Pass.placeImage, LayoutState.placeImage]
  cases job.printer.images.get? i.index.val with
  | none => exact h
  | some image => exact h.addMark hrun job _ _ _ index

/-! #### Tables -/

theorem Follows.endRow (h : Follows k initial p.state p) (hrun : p.stopped = false) (job : Job) :
    Follows k initial (p.state.endRow job) (p.endRow job k) := by
  simp only [Pass.endRow, LayoutState.endRow]
  split
  · have hbegin : Follows k initial (p.update (·.beginLine job)).state
        (p.update (·.beginLine job)) :=
      h.update (f := (·.beginLine job)) (LayoutState.sameLine_beginLine job p.state).lines
    exact hbegin.commit hrun job _ .row
  · exact h

theorem Follows.endTable (h : Follows k initial p.state p) (hrun : p.stopped = false) (job : Job) :
    Follows k initial (p.state.endTable job) (p.endTable job k) := by
  simp only [Pass.endTable, LayoutState.endTable]
  split
  · exact (h.finishLine hrun job .row).update
      (f := ({ · with table := none, lineStarted := false })) rfl
  · exact h

/-! #### Tokens -/

theorem Follows.applySetting (h : Follows k initial p.state p) (hrun : p.stopped = false)
    (job : Job) (index : Nat) (setting : Setting) :
    Follows k initial (p.state.applySetting job index setting)
      (p.applySetting job k index setting) := by
  have hquiet : (p.state.applySetting job index setting).lines = p.state.lines →
      Follows k initial (p.state.applySetting job index setting)
        (p.update (·.applySetting job index setting)) :=
    fun hlines => h.update (f := (·.applySetting job index setting)) hlines
  cases setting with
  | length target l =>
    cases target with
    | horizontalSpace =>
      cases l with
      | none => exact hquiet rfl
      | some l => exact h.addMark hrun job 0 (.glyph false) _ index
    | verticalSpace =>
      cases l with
      | none => exact hquiet rfl
      | some l =>
        refine hquiet ?_
        simp only [LayoutState.applySetting, LayoutState.applyLength, Option.elim_some,
          LayoutState.addVerticalSpace]
        split <;> rfl
    | _ => exact hquiet rfl
  | image i => exact h.placeImage hrun job i index
  | font id => exact hquiet (LayoutState.idle_switchFont_format job p.state _).lines
  | beginTable border width columns =>
    exact (h.finishLine hrun job (.newline false)).update (f := ({ · with table := some _ })) rfl
  | addTabStop id position => cases position <;> exact hquiet rfl
  | _ => exact hquiet rfl

theorem Follows.applySwitch (h : Follows k initial p.state p) (hrun : p.stopped = false)
    (job : Job) (w : Switch) :
    Follows k initial (p.state.applySwitch job w) (p.applySwitch job k w) := by
  have hquiet : (p.state.applySwitch job w).lines = p.state.lines →
      Follows k initial (p.state.applySwitch job w) (p.update (·.applySwitch job w)) :=
    fun hlines => h.update (f := (·.applySwitch job w)) hlines
  cases w with
  | endTable => exact h.endTable hrun job
  | resetFormatting => exact hquiet (LayoutState.idle_switchFont_format job p.state _).lines
  | script kind => exact hquiet (LayoutState.idle_switchFont_format job p.state _).lines
  | _ => exact hquiet rfl

theorem Follows.applyToggle (h : Follows k initial p.state p) (job : Job) (t : Toggle) :
    Follows k initial (p.state.applyToggle job t) (p.update (·.applyToggle job t)) := by
  refine h.update (f := (·.applyToggle job t)) ?_
  cases t with
  | startSelection => rfl
  | endSelection => rfl
  | _ => exact (LayoutState.idle_switchFont_format job p.state _).lines

theorem Follows.step (h : Follows k initial p.state p) (hrun : p.stopped = false) (job : Job)
    (l : Lexeme) : Follows k initial (p.state.step job l) (p.step job k l) := by
  obtain ⟨index, token⟩ := l
  cases token with
  | text c => exact h.place hrun job c index
  | newline c => exact h.newline hrun job c index
  | placeholder => exact h.addMark hrun job _ _ _ index
  | row => exact h.endRow hrun job
  | cell => exact h.update (f := (·.nextCell job)) (LayoutState.nextCell_frame job p.state).2.1
  | nothing => exact h
  | instruction i =>
    cases i with
    | toggle t => exact h.applyToggle job t
    | switch w => exact h.applySwitch hrun job w
    | setting setting => exact h.applySetting hrun job index setting

/-- Tokens that are not taken any more add lines behind the stop alone. -/
theorem Follows.of_stopped {t : LayoutState} (h : Follows k initial s p) (hstop : p.stopped = true)
    (hlines : s.lines.toList <+: t.lines.toList) : Follows k initial t p where
  state := fun hrun => absurd hstop (hrun ▸ Bool.false_ne_true)
  running := fun hrun => absurd hstop (hrun ▸ Bool.false_ne_true)
  stopped := by
    intro _ more
    obtain ⟨rest, hrest⟩ := hlines
    rw [← hrest, List.append_assoc]
    exact h.stopped hstop (rest ++ more)

theorem Follows.run (h : Follows k initial p.state p) (hrun : p.stopped = false) (job : Job)
    (hs : p.state.BreakWithin) (ls : List Lexeme) :
    Follows k initial (p.state.run job ls) (p.run job k ls) := by
  induction ls generalizing p with
  | nil => exact h
  | cons l ls ih =>
    have hstep := h.step hrun job l
    have hmoves : LayoutState.Moves job p.state (l.signs job.printer.images) (p.state.step job l) :=
      LayoutState.step_moves hs l
    have hbreak := hmoves.preserves LayoutState.Move.breakWithin hs
    simp only [Pass.run]
    split
    · next hstop =>
      have hrest : LayoutState.Moves job (p.state.step job l) _ ((p.state.step job l).run job ls) :=
        LayoutState.run_moves hbreak ls
      exact hstep.of_stopped hstop hrest.keeps_lines
    · next hgo =>
      have hgo := Bool.eq_false_iff.2 hgo
      have hstate := hstep.state hgo
      rw [← hstate] at hstep hbreak
      have hrest := ih hstep hgo hbreak
      rw [hstate] at hrest
      exact hrest

/-- At the end, the sink has what a traversal of all lines gives. -/
theorem Follows.finish (h : Follows k initial s p) (job : Job) (total : Nat) :
    k.traversal.lines initial (s.finish job total) =
      ((p.finish job k total).sink, (p.finish job k total).regions) := by
  simp only [Pass.finish]
  split
  · next hstop =>
    obtain ⟨rest, hrest⟩ := LayoutState.lines_prefix_finish job s total
    rw [← hrest]
    exact h.stopped hstop rest
  · next hgo =>
    have hrun := Bool.eq_false_iff.2 hgo
    have hstate := h.state hrun
    subst hstate
    simp only [LayoutState.finish]
    cases p.state.wrapped.filter fun _ => p.state.lineIsEmpty with
    | some w =>
      have hend : k.traversal.lines p.sink [⟨[], [.glyph (p.state.wrappedEnd w total)], [], []⟩] =
          ((k.glyph p.sink (p.state.wrappedEnd w total)).state, []) := by
        simp only [Traversal.lines, Traversal.items, List.nil_append, Sink.traversal]
        cases k.glyph p.sink (p.state.wrappedEnd w total) <;> rfl
      rw [h.running hrun, hend, List.append_nil]
    | none =>
      have hmark := h.pushMark job 0 .textEnd 0 total
      have hlast := hmark.commit hrun job (p.state.pushMark job 0 .textEnd 0 total).marks.size .text
      cases hstop : ((p.update (·.pushMark job 0 .textEnd 0 total)).commitAll job k .text).stopped with
      | true =>
        have hlines := hlast.stopped hstop []
        rw [List.append_nil] at hlines
        exact hlines
      | false =>
        have hlines := hlast.running hstop []
        rw [List.append_nil, Traversal.lines, List.append_nil] at hlines
        exact hlines

end Pass

namespace Printer

/-- **A layout that can be stopped gives its sink what a traversal of all lines gives.** -/
theorem pass_eq (printer : Printer) (markup : List UInt8) (origin : Point) (width : Int)
    (k : Sink σ) (initial : σ) :
    printer.pass markup origin width k initial =
      printer.query markup origin width k.traversal initial := by
  simp only [pass, query, Job.layout]
  cases printer.fonts.get? printer.defaultFont with
  | none => rfl
  | some font =>
    have hstart := Pass.follows_start k initial ⟨printer, origin, width⟩ font
    have hrun := hstart.run rfl ⟨printer, origin, width⟩
      (LayoutState.breakWithin_initial ⟨printer, origin, width⟩ font) (lexemes (Codec.decode markup))
    have hfinish := hrun.finish ⟨printer, origin, width⟩ (Codec.decode markup).length
    exact congrArg Except.ok hfinish.symm

/-- All that a layout calls its sink with, in order, until the sink stops it at the `n`-th
    glyph, if `n` is given; and the regions known then. -/
def calls (printer : Printer) (markup : List UInt8) (origin : Point) (width : Int)
    (stopAfter : Option Nat) : Except LayoutError (List Item × List Region) :=
  (printer.pass markup origin width (.recorder stopAfter) ([], 0)).map
    fun ((items, _), regions) => (items.reverse, regions)

theorem calls_eq (printer : Printer) (markup : List UInt8) (origin : Point) (width : Int)
    (stopAfter : Option Nat) :
    printer.calls markup origin width stopAfter = printer.layout markup origin width stopAfter := by
  rw [calls, pass_eq, Sink.traversal_recorder, layout]

theorem calls_of_layout {printer : Printer} {markup : List UInt8} {origin : Point} {width : Int}
    {ls : List Line} (h : (Job.mk printer origin width).layout markup = .ok ls)
    (stopAfter : Option Nat) :
    printer.calls markup origin width stopAfter =
      .ok (((Query.record stopAfter).items ([], 0) (ls.flatMap Line.items)).state.1.reverse,
        ((Query.record stopAfter).lines ([], 0) ls).2) := by
  rw [calls_eq, layout, query, h, ← Traversal.lines_state]
  rfl

/-- Of the lines of a layout, the record that stops is the first part of the whole one. -/
theorem calls_truncated {printer : Printer} {markup : List UInt8} {origin : Point} {width : Int}
    {ls : List Line} (h : (Job.mk printer origin width).layout markup = .ok ls) {n : Nat}
    (hn : 0 < n) :
    ∃ items regions told known,
      printer.calls markup origin width none = .ok (items, regions) ∧
      printer.calls markup origin width (some n) = .ok (told, known) ∧
      known <+: regions ∧
      ((told = items ∧ known = regions ∧ (items.filterMap Item.glyph?).length < n) ∨
        ∃ before g rest, items = before ++ .glyph g :: rest ∧ told = before ++ [.glyph g] ∧
          (before.filterMap Item.glyph?).length + 1 = n) := by
  obtain ⟨m, hall⟩ := Query.items_record_none [] 0 (ls.flatMap Line.items)
  have hregions := Traversal.regions_of_items _ hall
  refine ⟨_, _, _, _, calls_of_layout h none, calls_of_layout h (some n), ?_, ?_⟩
  · rw [hregions]
    exact Traversal.regions_prefix _ _ ls
  rw [hregions, hall]
  simp only [Flow.state, List.append_nil, List.reverse_reverse]
  rcases Query.items_record hn [] (ls.flatMap Line.items) with
    ⟨hfew, m', hmore⟩ | ⟨before, g, rest, hsplit, hcount, hstop⟩
  · left
    rw [Nat.zero_add] at hfew
    refine ⟨?_, Traversal.regions_of_items _ hmore, hfew⟩
    rw [hmore, List.append_nil, List.reverse_reverse]
  · right
    rw [Nat.zero_add] at hcount
    refine ⟨before, g, rest, hsplit, ?_, hcount⟩
    rw [hstop, List.append_nil, List.reverse_cons, List.reverse_reverse]

/-- **Stopping early only truncates.**  A sink that keeps all it is given and stops at its
    `n`-th glyph is given what comes before that glyph, and the glyph, of all that a sink is
    given that never stops, or all of it if there are fewer glyphs; nothing comes after the
    stop, and the regions are the first of all.  What any sink is left with is what a
    traversal of all the lines gives. -/
theorem stopping_truncates (printer : Printer) (markup : List UInt8) (origin : Point)
    (width : Int) {n : Nat} (hn : 0 < n) :
    ((∃ e, printer.calls markup origin width none = .error e ∧
        printer.calls markup origin width (some n) = .error e) ∨
      ∃ items regions told known,
        printer.calls markup origin width none = .ok (items, regions) ∧
        printer.calls markup origin width (some n) = .ok (told, known) ∧
        known <+: regions ∧
        ((told = items ∧ known = regions ∧ (items.filterMap Item.glyph?).length < n) ∨
          ∃ before g rest, items = before ++ .glyph g :: rest ∧ told = before ++ [.glyph g] ∧
            (before.filterMap Item.glyph?).length + 1 = n)) ∧
    (∀ stopAfter, printer.calls markup origin width stopAfter =
      printer.layout markup origin width stopAfter) ∧
    ∀ {σ : Type} (k : Sink σ) (initial : σ), printer.pass markup origin width k initial =
      printer.query markup origin width k.traversal initial := by
  refine ⟨?_, calls_eq printer markup origin width,
    fun k initial => pass_eq printer markup origin width k initial⟩
  cases h : (Job.mk printer origin width).layout markup with
  | error e =>
    left
    refine ⟨e, ?_, ?_⟩ <;> simp only [calls, pass_eq, query, h, Except.map]
  | ok ls => exact Or.inr (calls_truncated h hn)

/-- Of three letters and the end of the text, two letters. -/
theorem stopping_truncates_letters :
    ∃ items regions told known before g rest,
      boxes.calls [0x61, 0x62, 0x63] .zero 10 none = .ok (items, regions) ∧
      boxes.calls [0x61, 0x62, 0x63] .zero 10 (some 2) = .ok (told, known) ∧
      known <+: regions ∧ items = before ++ .glyph g :: rest ∧ told = before ++ [.glyph g] ∧
      (before.filterMap Item.glyph?).length + 1 = 2 := by
  have hlength : (boxes.calls [0x61, 0x62, 0x63] .zero 10 none).map
      (fun r => (r.1.filterMap Item.glyph?).length) = .ok 4 := by
    decide +kernel
  obtain ⟨⟨e, herror, -⟩ | ⟨items, regions, told, known, hall, htold, hknown, hcases⟩, -, -⟩ :=
    stopping_truncates boxes [0x61, 0x62, 0x63] .zero 10 (n := 2) (by decide)
  · rw [herror] at hlength
    cases hlength
  rcases hcases with ⟨-, -, hfew⟩ | ⟨before, g, rest, hitems, hend, hcount⟩
  · rw [hall] at hlength
    have hfour : (items.filterMap Item.glyph?).length = 4 := Except.ok.inj hlength
    omega
  · exact ⟨items, regions, told, known, before, g, rest, hall, htold, hknown, hitems, hend, hcount⟩

end Printer

end RichText
