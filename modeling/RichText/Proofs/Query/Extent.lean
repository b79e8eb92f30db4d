/-
  RichText/Proofs/Query/Extent.lean
  =================================
  **What is measured of a markup bounds what is drawn of it.**

  The size is gathered from glyphs alone.  Every line holds what is reported of it between the
  origin and the glyphs that are not left over (`Job.enclosed_layout`), and these are within the
  size (`Printer.measureWrapped_eq`).  So `Printer.measured_size_bounds` has glyphs, rules, boxes
  and regions within the size, for texts that set nothing but fonts, decorations, alignment and
  justification, selections and regions.
-/
import RichText.Proofs.Layout.Tidy
import RichText.Proofs.Query.Positions

namespace RichText

namespace Size

/-- All from `left` to `right` is within the width. -/
def Spans (size : Size) (left right : Int) : Prop :=
  0 ≤ left ∧ left ≤ right ∧ right ≤ size.width

/-- A rectangle ends within the height, and one of some width is within the width. -/
def Frames (size : Size) (bounds : Rect) : Prop :=
  (bounds.left < bounds.right → size.Spans bounds.left bounds.right) ∧
    bounds.bottom ≤ size.height

end Size

/-- The size holds the glyphs of the lines, those left over at a wrap in its height alone. -/
def Size.Bounds (size : Size) (lines : List Line) : Prop :=
  ∀ g ∈ events lines,
    (g.wrapped = false → g.location.x + g.advance ≤ size.width) ∧ g.lineBottom ≤ size.height

namespace Line

variable {lines : List Line} {l : Line} {size : Size} {left right : Int} {bounds : Rect}

theorem Spans.within (h : l.Spans 0 left right) (hl : l ∈ lines) (hsize : size.Bounds lines) :
    size.Spans left right := by
  obtain ⟨hleft, hle, g, hg, hset, hright⟩ := h
  have hmem : g ∈ RichText.events lines := List.mem_flatMap_of_mem hl hg
  exact ⟨hleft, hle, Int.le_trans hright ((hsize g hmem).1 hset)⟩

theorem Frames.within (h : l.Frames 0 bounds) (hl : l ∈ lines) (hsize : size.Bounds lines) :
    size.Frames bounds := by
  obtain ⟨hwidth, g, hg, hbottom⟩ := h
  have hmem : g ∈ RichText.events lines := List.mem_flatMap_of_mem hl hg
  exact ⟨fun hlt => (hwidth hlt).within hl hsize, Int.le_trans hbottom (hsize g hmem).2⟩

end Line

/-- **What is measured bounds what is drawn.**  Let no font move the pen to the left, and let a
    text hold no instructions but for fonts, decorations, justification, alignment, selections
    and regions. Wherever it is wrapped, its glyphs but for those left over and its rules are
    within the width that is measured; so are its boxes and regions, if they have a width
    themselves, and these end within the height. -/
theorem Printer.measured_size_bounds {p : Printer} (h : p.fonts.contains p.defaultFont = true)
    (hfonts : ∀ id font, p.fonts.get? id = some font → font.Forward) {markup : List UInt8}
    (htext : ∀ l ∈ lexemes (Codec.decode markup), l.token.isModest = true) (width : Int) :
    ∃ (items : List Item) (regions : List Region) (size : Size),
      p.layout markup .zero width none = .ok (items, regions) ∧
      p.measureWrapped markup width = .ok size ∧
      (∀ g, .glyph g ∈ items → g.wrapped = false →
        size.Spans g.location.x (g.location.x + g.advance)) ∧
      (∀ left right y thickness color, .rule left right y thickness color ∈ items →
        size.Spans left right) ∧
      (∀ bounds background border color, .box bounds background border color ∈ items →
        size.Frames bounds) ∧
      ∀ r ∈ regions, size.Frames r.bounds := by
  obtain ⟨font, hfont⟩ := (Registry.contains_iff p.fonts p.defaultFont).1 h
  have hlayout : (Job.mk p .zero width).layout markup =
      .ok ((Job.mk p .zero width).layoutWith font (Codec.decode markup)) :=
    Job.layout_eq hfont markup
  have hjob : (Job.mk p .zero width).Forward := hfonts
  have hlines : ∀ l ∈ (Job.mk p .zero width).layoutWith font (Codec.decode markup),
      l.Enclosed 0 := fun l hl => Job.enclosed_layout hfont hjob htext hl
  obtain ⟨size, hsize, -, -, hbounds⟩ := measureWrapped_eq hlayout
  refine ⟨_, _, size, layout_eq hfont markup .zero width, hsize, ?_, ?_, ?_, ?_⟩
  · intro g hg hset
    obtain ⟨l, hl, hi⟩ := List.mem_flatMap.1 hg
    have hevent : g ∈ l.events := List.mem_filterMap.2 ⟨_, hi, rfl⟩
    exact ((hlines l hl).glyphs g hevent hset).within hl hbounds
  · intro left right y thickness color hi
    obtain ⟨l, hl, hi⟩ := List.mem_flatMap.1 hi
    exact ((hlines l hl).rules left right y thickness color hi).within hl hbounds
  · intro bounds background border color hi
    obtain ⟨l, hl, hi⟩ := List.mem_flatMap.1 hi
    exact ((hlines l hl).boxes bounds background border color hi).within hl hbounds
  · intro r hr
    obtain ⟨l, hl, hr⟩ := List.mem_flatMap.1 hr
    exact ((hlines l hl).regions r hr).within hl hbounds

/-! ### A justified line above one that is aligned -/

theorem forward_box {b : BoxFace} (hkerning : b.kerning = []) (hadvance : 0 ≤ b.advance)
    (hem : 0 ≤ b.em) (hdigit : 0 ≤ b.digitWidth) (hheight : 0 < b.height) :
    (Font.ofFace b.face).Forward where
  kerning := BoxFace.kern_of_nil hkerning
  advance := fun _ => hadvance
  em := hem
  digitWidth := hdigit
  height := hheight
  letterSpacing := Int.le_refl 0

theorem Printer.forward_boxes (id : Nat) (font : Font) (h : boxes.fonts.get? id = some font) :
    font.Forward := by
  rcases font_of_boxes h with rfl | rfl
  · exact forward_box rfl (by decide) (by decide) (by decide) (by decide)
  · exact forward_box rfl (by decide) (by decide) (by decide) (by decide)

/-- Three words that are justified and aligned to the right, in a region and selected. -/
def Printer.selectedWords : List UInt8 :=
  [0xC2, 0x9A, 0x20, 0xC2, 0x9A, 0x23, 0xC2, 0x9B, 0x30, 0x01, 0xC2, 0x9C, 0xC2, 0x86,
    0x61, 0x62, 0x20, 0x63, 0x64, 0x20, 0x65, 0x66]

/-- The first line is as wide as it may be, and the last word stands at its right end. -/
theorem Printer.measured_size_bounds_selectedWords :
    (∀ l ∈ lexemes (Codec.decode selectedWords), l.token.isModest = true) ∧
    ∃ (items : List Item) (regions : List Region) (size : Size),
      boxes.layout selectedWords .zero 55 none = .ok (items, regions) ∧
      boxes.measureWrapped selectedWords 55 = .ok size ∧
      regions.map Region.bounds = [⟨0, 0, 55, 20⟩, ⟨35, 20, 55, 40⟩] ∧
      size.Spans 0 55 ∧ size.Spans 35 55 ∧ 40 ≤ size.height := by
  have htext : ∀ l ∈ lexemes (Codec.decode selectedWords), l.token.isModest = true := by
    decide +kernel
  obtain ⟨items, regions, size, hlayout, hsize, -, -, -, hregions⟩ :=
    measured_size_bounds (p := boxes) rfl forward_boxes htext 55
  have hparts : (boxes.layout selectedWords .zero 55 none).toOption.map
      (fun result => result.2.map Region.bounds) =
        some [⟨0, 0, 55, 20⟩, ⟨35, 20, 55, 40⟩] := by
    decide +kernel
  rw [hlayout] at hparts
  have hparts : regions.map Region.bounds = [⟨0, 0, 55, 20⟩, ⟨35, 20, 55, 40⟩] :=
    Option.some.inj hparts
  have hframes : ∀ bounds ∈ regions.map Region.bounds, size.Frames bounds := by
    intro bounds hbounds
    obtain ⟨r, hr, rfl⟩ := List.mem_map.1 hbounds
    exact hregions r hr
  rw [hparts] at hframes
  have hfirst := hframes ⟨0, 0, 55, 20⟩ (by simp)
  have hlast := hframes ⟨35, 20, 55, 40⟩ (by simp)
  refine ⟨htext, items, regions, size, hlayout, hsize, hparts, ?_, ?_, hlast.2⟩
  · exact hfirst.1 (by decide)
  · exact hlast.1 (by decide)

end RichText
