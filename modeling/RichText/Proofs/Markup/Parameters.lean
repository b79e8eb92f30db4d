/-
  RichText/Proofs/Markup/Parameters.lean
  ======================================
  **Parameters are read back as they were written.**

  `Takes r ws rest a` says that the reader `r` takes the code points `ws`, gives
  `a` and stops before `rest`.  Most parameters are delimited by themselves and are
  read back before any `rest`.  The others end where a code point follows that
  cannot continue them: an index that may be absent ends before whatever is no
  seven-bit number, a list of columns before whatever is no row separator.
-/
import RichText.Markup.Setting.Reading
import RichText.Markup.Setting.Writing

namespace RichText

/-- Whether the end of a written color shows without a look at what follows: an
    entry of the color table has to bring its alpha. -/
def ColorRef.BringsAlpha : ColorRef → Prop
  | .indexed _ none => False
  | _ => True

namespace Reading

variable {α β : Type}

/-! ### Readers in sequence -/

/-- The reader takes `ws`, gives `a`, and stops before `rest`. -/
def Takes (r : Reading α) (ws rest : List Nat) (a : α) : Prop :=
  ∀ used, r ⟨used, ws ++ rest⟩ = (a, ⟨used + ws.length, rest⟩)

theorem Takes.of_eq {r : Reading α} {ws rest : List Nat} {a b : α} (h : Takes r ws rest a)
    (e : a = b) : Takes r ws rest b := e ▸ h

theorem takes_pure (a : α) (rest : List Nat) : Takes (pure a) [] rest a := fun _ => rfl

theorem Takes.bind {r : Reading α} {f : α → Reading β} {ws vs rest : List Nat} {a : α} {b : β}
    (hr : Takes r ws (vs ++ rest) a) (hf : Takes (f a) vs rest b) :
    Takes (r >>= f) (ws ++ vs) rest b := by
  intro used
  have h : (r >>= f) ⟨used, ws ++ vs ++ rest⟩
      = f (r ⟨used, ws ++ vs ++ rest⟩).1 (r ⟨used, ws ++ vs ++ rest⟩).2 := rfl
  rw [h, List.append_assoc, hr used, hf, List.length_append, Nat.add_assoc]

theorem Takes.map {r : Reading α} {ws rest : List Nat} {a : α} (f : α → β)
    (hr : Takes r ws rest a) : Takes (f <$> r) ws rest (f a) := by
  intro used
  have h : (f <$> r) ⟨used, ws ++ rest⟩ = (f (r ⟨used, ws ++ rest⟩).1, (r ⟨used, ws ++ rest⟩).2) :=
    rfl
  rw [h, hr used]

theorem Takes.cons_bind {r : Reading α} {f : α → Reading β} {c : Nat} {vs rest : List Nat} {a : α}
    {b : β} (hr : Takes r [c] (vs ++ rest) a) (hf : Takes (f a) vs rest b) :
    Takes (r >>= f) (c :: vs) rest b := hr.bind hf

theorem Takes.nil_bind {r : Reading α} {f : α → Reading β} {vs rest : List Nat} {a : α} {b : β}
    (hr : Takes r [] (vs ++ rest) a) (hf : Takes (f a) vs rest b) : Takes (r >>= f) vs rest b :=
  hr.bind hf

theorem Takes.bind_nil {r : Reading α} {f : α → Reading β} {ws rest : List Nat} {a : α} {b : β}
    (hr : Takes r ws rest a) (hf : Takes (f a) [] rest b) : Takes (r >>= f) ws rest b := by
  have h := Takes.bind hr hf
  rwa [List.append_nil] at h

theorem Takes.bind_pure {r : Reading α} {ws rest : List Nat} {a : α} (hr : Takes r ws rest a)
    (f : α → β) : Takes (r >>= fun x => pure (f x)) ws rest (f a) :=
  hr.bind_nil (takes_pure (f a) rest)

/-- A part that a mode announces is read before all that follows it. -/
theorem if_bind (p : Prop) [Decidable p] (r q : Reading α) (f : α → Reading β) :
    (if p then r >>= f else q >>= f) = (if p then r else q) >>= f := by
  split <;> rfl

/-! ### Primitive parameters -/

theorem takes_next (c : Nat) (rest : List Nat) : Takes next [c] rest (some c) := fun _ => rfl

theorem takes_index (i : Index) (rest : List Nat) :
    Takes index (Writing.index i) rest (some i) := by
  intro used
  simp only [index, Writing.index, List.cons_append, List.nil_append, dif_pos i.isLt,
    List.length_singleton]

/-- What cannot be read as a number of seven bits. -/
def NoIndex (rest : List Nat) : Prop := ∀ c ∈ rest.head?, 128 ≤ c

theorem noIndex_terminator (rest : List Nat) : NoIndex (Control.terminator :: rest) := by
  intro c hc
  rw [List.head?_cons, Option.mem_some] at hc
  subst hc
  decide

theorem takes_no_index {rest : List Nat} (h : NoIndex rest) : Takes index [] rest none := by
  intro used
  cases rest with
  | nil => rfl
  | cons c rest =>
    have hc : ¬ c < 128 := by
      have := h c rfl
      omega
    simp only [index, List.nil_append, dif_neg hc, List.length_nil, Nat.add_zero]

theorem takes_optionalIndex (i : Option Index) {rest : List Nat} (h : NoIndex rest) :
    Takes index (Writing.optionalIndex i) rest i := by
  cases i with
  | none => exact takes_no_index h
  | some i => exact takes_index i rest

/-- A number below 128 that counts something, or whose bits do. -/
theorem takes_indexOrZero {n : Nat} (h : n < 128) (rest : List Nat) :
    Takes indexOrZero [n] rest n := by
  unfold indexOrZero
  exact (takes_index ⟨n, h⟩ rest).bind_pure fun i => (i.map Fin.val).getD 0

theorem takes_word (w : Int16) (rest : List Nat) : Takes word (Writing.word w) rest w := by
  have h : Takes word (Writing.word w) rest (UInt16.ofNat w.toUInt16.toNat).toInt16 := by
    unfold word
    exact (takes_next w.toUInt16.toNat rest).bind_pure fun c => (UInt16.ofNat (c.getD 0)).toInt16
  exact h.of_eq (by simp)

theorem takes_wordIf (w : Int16) (rest : List Nat) :
    Takes (wordIf (w != 0)) (Writing.wordUnlessZero w) rest w := by
  by_cases h : w = 0
  · subst h
    exact takes_pure 0 rest
  · have hb : (w != 0) = true := by simpa using h
    rw [hb, Writing.wordUnlessZero, if_neg h]
    exact takes_word w rest

private def wordOf (low high : UInt8) : Int16 :=
  (UInt16.ofNat (low.toNat + 256 * high.toNat)).toInt16

private theorem toNat_wordOf (low high : UInt8) :
    (wordOf low high).toUInt16.toNat = low.toNat + 256 * high.toNat := by
  have hl : low.toNat < 256 := low.toNat_lt
  have hh : high.toNat < 256 := high.toNat_lt
  have hn : low.toNat + 256 * high.toNat < 65536 := by omega
  rw [wordOf, UInt16.toUInt16_toInt16, UInt16.toNat_ofNat', Nat.mod_eq_of_lt hn]

private theorem takes_wordOf (low high : UInt8) (rest : List Nat) :
    Takes word [low.toNat + 256 * high.toNat] rest (wordOf low high) := by
  rw [← toNat_wordOf]
  exact takes_word (wordOf low high) rest

private theorem lowByte_wordOf (low high : UInt8) : lowByte (wordOf low high) = low := by
  have hl : low.toNat < 256 := low.toNat_lt
  have hm : (low.toNat + 256 * high.toNat) % 256 = low.toNat := by omega
  apply UInt8.toNat_inj.1
  rw [lowByte, toNat_wordOf, UInt8.toNat_ofNat', hm]

private theorem highByte_wordOf (low high : UInt8) : highByte (wordOf low high) = high := by
  have hl : low.toNat < 256 := low.toNat_lt
  have hh : high.toNat < 256 := high.toNat_lt
  have hm : (low.toNat + 256 * high.toNat) / 256 % 256 = high.toNat := by omega
  apply UInt8.toNat_inj.1
  rw [highByte, toNat_wordOf, UInt8.toNat_ofNat', hm]

theorem takes_rgba (c : Rgba) (rest : List Nat) : Takes rgba (Writing.rgba c) rest c := by
  obtain ⟨r, g, b, a⟩ := c
  have h : Takes rgba (Writing.rgba ⟨r, g, b, a⟩) rest
      ⟨lowByte (wordOf r g), highByte (wordOf r g), lowByte (wordOf b a), highByte (wordOf b a)⟩ := by
    unfold rgba
    exact (takes_wordOf r g _).bind ((takes_wordOf b a rest).bind_pure _)
  rwa [lowByte_wordOf, highByte_wordOf, lowByte_wordOf, highByte_wordOf] at h

/-! ### Lengths -/

private theorem lengthMode_lt (l : Length) : Writing.lengthMode l < 8 := by
  unfold Writing.lengthMode
  cases l.pixels != 0 <;> cases l.relative != 0 <;> cases l.basisPoints != 0 <;> decide

/-- The bits of a mode say which words of the length follow. -/
private theorem testBit_lengthMode (l : Length) :
    (Writing.lengthMode l).testBit 0 = (l.pixels != 0) ∧
      (Writing.lengthMode l).testBit 1 = (l.relative != 0) ∧
      (Writing.lengthMode l).testBit 2 = (l.basisPoints != 0) := by
  unfold Writing.lengthMode
  cases l.pixels != 0 <;> cases l.relative != 0 <;> cases l.basisPoints != 0 <;> decide

theorem takes_length (l : Option Length) (rest : List Nat) :
    Takes length (Writing.length l) rest l := by
  cases l with
  | none =>
    have h : Takes length (Writing.index ⟨0x7F, by decide⟩ ++ []) rest none := by
      unfold length
      refine (takes_index ⟨0x7F, by decide⟩ rest).bind ?_
      exact takes_pure none rest
    exact h
  | some l =>
    have hlt : Writing.lengthMode l < 128 := Nat.lt_trans (lengthMode_lt l) (by decide)
    have hne : ¬ Writing.lengthMode l = 0x7F := by
      have := lengthMode_lt l
      omega
    obtain ⟨h0, h1, h2⟩ := testBit_lengthMode l
    have h : Takes length (Writing.index ⟨Writing.lengthMode l, hlt⟩ ++
        (Writing.wordUnlessZero l.pixels ++
          (Writing.wordUnlessZero l.relative ++ Writing.wordUnlessZero l.basisPoints))) rest
        (some ⟨l.pixels, l.relative, l.basisPoints⟩) := by
      unfold length
      refine (takes_index ⟨Writing.lengthMode l, hlt⟩ _).bind ?_
      simp only [if_neg hne, h0, h1, h2]
      exact (takes_wordIf l.pixels _).bind ((takes_wordIf l.relative _).bind
        ((takes_wordIf l.basisPoints rest).bind_pure _))
    rw [← List.append_assoc (Writing.wordUnlessZero l.pixels)] at h
    exact h

theorem takes_sides (s : Sides (Option Length)) (rest : List Nat) :
    Takes sides (Writing.sides s) rest s := by
  have h : Takes sides (Writing.length s.left ++ (Writing.length s.top ++
      (Writing.length s.right ++ Writing.length s.bottom))) rest
      ⟨s.left, s.top, s.right, s.bottom⟩ := by
    unfold sides
    exact (takes_length s.left _).bind ((takes_length s.top _).bind
      ((takes_length s.right _).bind ((takes_length s.bottom rest).bind_pure _)))
  simpa only [Writing.sides, List.append_assoc] using h

/-! ### Colors -/

theorem takes_indexed (i : Index) (alpha : Option Index) {rest : List Nat}
    (h : alpha = none → NoIndex rest) :
    Takes indexed (Writing.color (.indexed i alpha)) rest (.indexed i alpha) := by
  unfold indexed
  refine (takes_index i _).bind ?_
  cases alpha with
  | none => exact (takes_no_index (h rfl)).bind_pure _
  | some a => exact (takes_index a rest).bind_pure _

theorem takes_no_color {rest : List Nat} (h : NoIndex rest) :
    Takes indexed (Writing.color .default) rest .default := by
  unfold indexed
  refine (takes_no_index h).bind_nil ?_
  exact takes_pure ColorRef.default rest

/-! ### Changes of a decoration -/

theorem takes_lineChange (change : LineChange) (rest : List Nat) :
    Takes lineChange (Writing.lineChange change) rest change := by
  -- The settings are written as their bits, which are read back by `ofBits_bits`.
  have takes_settings : ∀ (settings : LineSettings) (rest : List Nat),
      Takes (some <$> LineSettings.ofBits <$> indexOrZero) [settings.bits] rest (some settings) := by
    intro settings rest
    have hlt : settings.bits < 128 := Nat.lt_trans settings.bits_lt (by decide)
    exact (((takes_indexOrZero hlt rest).map LineSettings.ofBits).map some).of_eq
      (congrArg some (LineSettings.ofBits_bits settings))
  unfold lineChange
  rcases change with _ | ⟨_ | settings, _ | thickness⟩
  · refine (takes_indexOrZero (n := 0) (by decide) rest).bind_nil ?_
    exact takes_pure LineChange.reset rest
  · refine (takes_indexOrZero (n := 4) (by decide) rest).bind_nil ?_
    exact takes_pure (LineChange.change none none) rest
  · refine (takes_indexOrZero (n := 2) (by decide) _).cons_bind ?_
    refine (takes_pure none _).nil_bind ?_
    exact ((takes_length thickness rest).map some).bind_pure _
  · refine (takes_indexOrZero (n := 1) (by decide) _).cons_bind ?_
    refine (takes_settings settings rest).bind_nil ?_
    exact (takes_pure none rest).bind_pure _
  · refine (takes_indexOrZero (n := 3) (by decide) _).cons_bind ?_
    refine (takes_settings settings _).cons_bind ?_
    exact ((takes_length thickness rest).map some).bind_pure _

/-! ### Selection styles -/

/-- Whether a color is announced by the bit of the color table. -/
private def isTable : ColorRef → Bool
  | .indexed _ _ => true
  | _ => false

/-- Whether a color is announced by the bit of four bytes. -/
private def isBytes : ColorRef → Bool
  | .rgba _ => true
  | _ => false

private theorem takes_colorIf {c : ColorRef} (h : c.BringsAlpha) (rest : List Nat) :
    Takes (colorIf (isTable c) (isBytes c)) (Writing.color c) rest c := by
  cases c with
  | default => exact takes_pure ColorRef.default rest
  | indexed i alpha =>
    cases alpha with
    | none => exact h.elim
    | some a => exact takes_indexed i (some a) (by simp)
  | rgba c => exact (takes_rgba c rest).map ColorRef.rgba

private theorem colorBit_eq (lowest : Nat) (c : ColorRef) :
    Writing.colorBit lowest c = lowest * (isTable c).toNat + 2 * lowest * (isBytes c).toNat := by
  cases c <;> simp [Writing.colorBit, isTable, isBytes]

private theorem not_table_and_bytes (c : ColorRef) : (isTable c && isBytes c) = false := by
  cases c <;> rfl

/-- The bits of a mode say which parts of the style follow. -/
private theorem testBit_selectionMode (s : SelectionStyle) :
    Writing.selectionMode s < 64 ∧
      (Writing.selectionMode s).testBit 0 = s.image.isSome ∧
      (Writing.selectionMode s).testBit 1 = isTable s.text ∧
      (Writing.selectionMode s).testBit 2 = isBytes s.text ∧
      (Writing.selectionMode s).testBit 3 = isTable s.background ∧
      (Writing.selectionMode s).testBit 4 = isBytes s.background ∧
      (Writing.selectionMode s).testBit 5 = s.noBackground := by
  have ht := not_table_and_bytes s.text
  have hb := not_table_and_bytes s.background
  simp only [Writing.selectionMode, colorBit_eq]
  revert ht hb
  cases s.image.isSome <;> cases isTable s.text <;> cases isBytes s.text <;>
    cases isTable s.background <;> cases isBytes s.background <;> cases s.noBackground <;> decide

theorem takes_selectionStyle {s : SelectionStyle} (ht : s.text.BringsAlpha)
    (hb : s.background.BringsAlpha) (rest : List Nat) :
    Takes selectionStyle (Writing.selectionStyle s) rest s := by
  obtain ⟨hlt, h0, h1, h2, h3, h4, h5⟩ := testBit_selectionMode s
  have takes_image : ∀ rest, Takes (if s.image.isSome = true then index else pure none)
      (Writing.optionalIndex s.image) rest s.image := by
    intro rest
    cases s.image with
    | none => exact takes_pure none rest
    | some i => exact takes_index i rest
  have h : Takes selectionStyle ([Writing.selectionMode s] ++ (Writing.optionalIndex s.image ++
      (Writing.color s.text ++ Writing.color s.background))) rest
      ⟨s.image, s.text, s.background, s.noBackground⟩ := by
    unfold selectionStyle
    refine (takes_indexOrZero (Nat.lt_trans hlt (by decide)) _).bind ?_
    simp only [h0, h1, h2, h3, h4, h5, if_bind]
    refine (takes_image _).bind ?_
    refine (takes_colorIf ht _).bind ?_
    exact (takes_colorIf hb rest).bind_pure _
  simpa only [Writing.selectionStyle, List.append_assoc, List.cons_append, List.nil_append] using h

/-! ### Images -/

private theorem takes_offset (x y : Int16) (rest : List Nat) :
    Takes offset (Writing.word x ++ Writing.word y) rest (x, y) := by
  unfold offset
  exact (takes_word x _).bind ((takes_word y rest).bind_pure _)

private theorem takes_size (width height : Option Length) (rest : List Nat) :
    Takes size (Writing.length width ++ Writing.length height) rest (width, height) := by
  unfold size
  exact (takes_length width _).bind ((takes_length height rest).bind_pure _)

private theorem takes_wordSides (s : Sides Int16) (rest : List Nat) :
    Takes wordSides (Writing.word s.left ++ Writing.word s.top ++ Writing.word s.right ++
      Writing.word s.bottom) rest s := by
  have h : Takes wordSides (Writing.word s.left ++ (Writing.word s.top ++
      (Writing.word s.right ++ Writing.word s.bottom))) rest
      ⟨s.left, s.top, s.right, s.bottom⟩ := by
    unfold wordSides
    exact (takes_word s.left _).bind ((takes_word s.top _).bind
      ((takes_word s.right _).bind ((takes_word s.bottom rest).bind_pure _)))
  simpa only [List.append_assoc] using h

/-- Whether the margin of an image is announced by the bit of one side. -/
private def isUniform : Option ImageMargin → Bool
  | some (.uniform _) => true
  | _ => false

/-- Whether the margin of an image is announced by the bit of four sides. -/
private def hasSides : Option ImageMargin → Bool
  | some (.sides _) => true
  | _ => false

private theorem takes_margin (m : Option ImageMargin) (rest : List Nat) :
    Takes (margin (isUniform m) (hasSides m)) (Writing.margin m) rest m := by
  rcases m with _ | side | s
  · exact takes_pure none rest
  · exact ((takes_word side rest).map ImageMargin.uniform).map some
  · exact ((takes_wordSides s rest).map ImageMargin.sides).map some

/-- The bits of a mode give the alignment, and say which parts of the image follow. -/
private theorem testBit_imageMode (i : ImageSetting) :
    Writing.imageMode i < 64 ∧ ImageAlign.ofCode (Writing.imageMode i % 4) = i.align ∧
      (Writing.imageMode i).testBit 2 = i.offset.isSome ∧
      (Writing.imageMode i).testBit 3 = i.size.isSome ∧
      (Writing.imageMode i).testBit 4 = isUniform i.margin ∧
      (Writing.imageMode i).testBit 5 = hasSides i.margin := by
  have hm : Writing.marginBit i.margin
      = 16 * (isUniform i.margin).toNat + 32 * (hasSides i.margin).toNat := by
    rcases i.margin with _ | _ | _ <;> rfl
  have hu : (isUniform i.margin && hasSides i.margin) = false := by
    rcases i.margin with _ | _ | _ <;> rfl
  simp only [Writing.imageMode, hm]
  revert hu
  cases i.align <;> cases i.offset.isSome <;> cases i.size.isSome <;>
    cases isUniform i.margin <;> cases hasSides i.margin <;> decide

theorem takes_image (i : ImageSetting) (rest : List Nat) :
    Takes image (Writing.image i) rest (some i) := by
  obtain ⟨hlt, ha, h2, h3, h4, h5⟩ := testBit_imageMode i
  have takes_offset? : ∀ rest, Takes (if i.offset.isSome = true then some <$> offset else pure none)
      (Writing.offset i.offset) rest i.offset := by
    intro rest
    rcases i.offset with _ | ⟨x, y⟩
    · exact takes_pure none rest
    · exact (takes_offset x y rest).map some
  have takes_size? : ∀ rest, Takes (if i.size.isSome = true then some <$> size else pure none)
      (Writing.size i.size) rest i.size := by
    intro rest
    rcases i.size with _ | ⟨width, height⟩
    · exact takes_pure none rest
    · exact (takes_size width height rest).map some
  have h : Takes image (Writing.index i.index ++ ([Writing.imageMode i] ++ (Writing.offset i.offset ++
      (Writing.size i.size ++ Writing.margin i.margin)))) rest
      (some ⟨i.index, i.align, i.offset, i.size, i.margin⟩) := by
    unfold image
    refine (takes_index i.index _).bind ?_
    refine (takes_indexOrZero (Nat.lt_trans hlt (by decide)) _).bind ?_
    simp only [h2, h3, h4, h5, ha, if_bind]
    refine (takes_offset? _).bind ?_
    refine (takes_size? _).bind ?_
    exact (takes_margin i.margin rest).bind_pure _
  simpa only [Writing.image, List.append_assoc, List.cons_append, List.nil_append] using h

/-! ### Columns -/

private theorem takes_peek (rest : List Nat) : Takes peek [] rest rest.head? := fun _ => rfl

private theorem takes_column (c : ColumnSetting) {n : Nat} {ws rest : List Nat}
    {cs : List ColumnSetting} (h : Takes (columns n) ws rest cs) :
    Takes (columns (n + 1)) (Writing.column c ++ ws) rest (c :: cs) := by
  have hw : Writing.column c ++ ws =
      [] ++ ([Control.rowSeparator] ++ ([c.align.code] ++ (Writing.length c.width ++ ws))) := rfl
  have ha : c.align.code < 128 := by cases c.align <;> decide
  rw [hw]
  unfold columns
  refine (takes_peek _).bind ?_
  refine (takes_next Control.rowSeparator _).bind ?_
  refine (takes_indexOrZero ha _).bind ?_
  refine (takes_length c.width _).bind ?_
  simpa only [TextAlign.ofCode_code] using h.bind_pure (c :: ·)

private theorem takes_no_columns (n : Nat) {rest : List Nat}
    (h : rest.head? ≠ some Control.rowSeparator) : Takes (columns n) [] rest [] := by
  cases n with
  | zero => exact takes_pure [] rest
  | succ n =>
    unfold columns
    refine (takes_peek rest).nil_bind ?_
    rw [if_neg h]
    exact takes_pure [] rest

/-- A list of columns ends before whatever is no row separator. -/
theorem takes_columns (cs : List ColumnSetting) {n : Nat} {rest : List Nat} (hn : cs.length ≤ n)
    (h : rest.head? ≠ some Control.rowSeparator) :
    Takes (columns n) (cs.flatMap Writing.column) rest cs := by
  induction cs generalizing n with
  | nil => exact takes_no_columns n h
  | cons c cs ih =>
    cases n with
    | zero => simp at hn
    | succ n =>
      rw [List.flatMap_cons]
      exact takes_column c (ih (by simpa using hn))

/-- Each column has at least one code point, so that the code points left over are
    enough for all of them. -/
theorem takes_allColumns (cs : List ColumnSetting) {rest : List Nat}
    (h : rest.head? ≠ some Control.rowSeparator) :
    Takes allColumns (cs.flatMap Writing.column) rest cs := by
  have hlen : cs.length ≤ (cs.flatMap Writing.column ++ rest).length := by
    have : cs.length ≤ (cs.flatMap Writing.column).length := by
      induction cs with
      | nil => exact Nat.zero_le 0
      | cons c cs ih =>
        rw [List.flatMap_cons, List.length_append, Writing.column, List.length_cons,
          List.length_cons, List.length_cons]
        omega
    rw [List.length_append]
    omega
  exact takes_columns cs hlen h

/-! ### What ends at the terminator -/

theorem takes_letters {letters : List Nat} (h : ∀ c ∈ letters, c ≠ Control.terminator)
    (rest : List Nat) :
    Takes Reading.letters letters (Control.terminator :: rest) letters := by
  intro used
  have ht : (letters ++ Control.terminator :: rest).takeWhile (· != Control.terminator)
      = letters := by
    rw [List.takeWhile_append_of_pos (by simpa using h)]
    simp
  simp only [Reading.letters, ht, List.drop_left]

theorem takes_finish (rest : List Nat) : Takes finish [Control.terminator] rest () := by
  unfold finish
  refine (takes_letters (List.forall_mem_nil (· ≠ Control.terminator)) rest).nil_bind ?_
  exact (takes_next Control.terminator rest).bind_pure _

end Reading

end RichText
