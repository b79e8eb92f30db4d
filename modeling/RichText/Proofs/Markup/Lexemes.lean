/-
  RichText/Proofs/Markup/Lexemes.lean
  ===================================
  **Which code points put something on a line.**

  The tokens of a text stand one after another (`pairwise_lexemes`), each where its
  first code point does (`exists_of_mem_lexemes`).  Whether a token puts a mark on the
  line can be seen from its first code points (`signs_ne_nil_iff`): from the first one
  alone if it is text, from the parameters that follow if it starts a space of explicit
  width or an image.
-/
import RichText.Proofs.Layout.Moves
import RichText.Proofs.Markup.Instructions

namespace RichText

/-! ### Positions of tokens -/

/-- Tokens start after one another, each within the text. -/
theorem pairwise_lexemesFrom (skip index : Nat) (cs : List Nat) :
    (lexemesFrom skip index cs).Pairwise (fun l m => l.index < m.index) ∧
      ∀ l ∈ lexemesFrom skip index cs, index ≤ l.index ∧ l.index < index + cs.length := by
  induction cs generalizing skip index with
  | nil =>
    rw [lexemesFrom_nil]
    exact ⟨.nil, fun l hl => nomatch hl⟩
  | cons c cs ih =>
    cases skip with
    | succ skip =>
      obtain ⟨hpairwise, hbounds⟩ := ih skip (index + 1)
      refine ⟨hpairwise, fun l hl => ?_⟩
      have := hbounds l hl
      rw [List.length_cons]
      omega
    | zero =>
      obtain ⟨hpairwise, hbounds⟩ := ih (Token.read c cs).2 (index + 1)
      refine ⟨List.pairwise_cons.2 ⟨fun l hl => (hbounds l hl).1, hpairwise⟩, fun l hl => ?_⟩
      rw [List.length_cons]
      rcases List.mem_cons.1 hl with rfl | hl
      · exact ⟨Nat.le_refl index, Nat.lt_add_of_pos_right (Nat.succ_pos cs.length)⟩
      · have := hbounds l hl
        omega

theorem pairwise_lexemes (cs : List Nat) :
    (lexemes cs).Pairwise fun l m => l.index < m.index := (pairwise_lexemesFrom 0 0 cs).1

theorem index_lt_of_mem_lexemes {cs : List Nat} {l : Lexeme} (h : l ∈ lexemes cs) :
    l.index < cs.length := by
  have := ((pairwise_lexemesFrom 0 0 cs).2 l h).2
  omega

/-- A token is what is read where it stands. -/
theorem exists_of_mem_lexemesFrom {skip index : Nat} {cs : List Nat} {l : Lexeme}
    (h : l ∈ lexemesFrom skip index cs) :
    ∃ n c rest, cs.drop n = c :: rest ∧ l = ⟨index + n, (Token.read c rest).1⟩ := by
  induction cs generalizing skip index with
  | nil =>
    rw [lexemesFrom_nil] at h
    cases h
  | cons c cs ih =>
    cases skip with
    | succ skip =>
      obtain ⟨n, d, rest, hdrop, rfl⟩ := ih h
      refine ⟨n + 1, d, rest, hdrop, ?_⟩
      rw [Nat.add_assoc, Nat.add_comm 1]
    | zero =>
      rcases List.mem_cons.1 h with rfl | h
      · exact ⟨0, c, cs, rfl, rfl⟩
      · obtain ⟨n, d, rest, hdrop, rfl⟩ := ih h
        refine ⟨n + 1, d, rest, hdrop, ?_⟩
        rw [Nat.add_assoc, Nat.add_comm 1]

theorem exists_of_mem_lexemes {cs : List Nat} {l : Lexeme} (h : l ∈ lexemes cs) :
    ∃ c rest, cs.drop l.index = c :: rest ∧ l.token = (Token.read c rest).1 := by
  obtain ⟨n, c, rest, hdrop, rfl⟩ := exists_of_mem_lexemesFrom h
  exact ⟨c, rest, by rw [Nat.zero_add]; exact hdrop, rfl⟩

/-! ### Settings by their command -/

namespace Reading

private theorem bind_apply {α β : Type} (r : Reading α) (f : α → Reading β) (cur : Cursor) :
    (r >>= f) cur = f (r cur).1 (r cur).2 := rfl

/-- An entry of the color table is not read as four bytes. -/
private theorem indexed_cases (cur : Cursor) :
    (indexed cur).1 = .default ∨ ∃ i alpha, (indexed cur).1 = .indexed i alpha := by
  unfold indexed
  rw [bind_apply]
  cases (index cur).1 with
  | none => exact Or.inl rfl
  | some i => exact Or.inr ⟨i, (index (index cur).2).1, rfl⟩

theorem command_of_parameters {command : Nat} {cur : Cursor} {s : Setting}
    (h : (parameters command cur).1 = some s) : s.command = command := by
  revert h
  unfold parameters
  cases hindex : ColorTarget.ofIndexCommand? command with
  | some target =>
    unfold ColorTarget.ofIndexCommand? at hindex
    have hc : target.indexCommand = command := by simpa using List.find?_some hindex
    intro h
    have hs : Setting.color target (indexed cur).1 = s := Option.some.inj h
    rw [← hs]
    rcases indexed_cases cur with hd | ⟨i, alpha, hi⟩
    · rw [hd]
      exact hc
    · rw [hi]
      exact hc
  | none =>
  cases hrgba : ColorTarget.ofRgbaCommand? command with
  | some target =>
    unfold ColorTarget.ofRgbaCommand? at hrgba
    have hc : target.rgbaCommand = command := by simpa using List.find?_some hrgba
    intro h
    cases h
    exact hc
  | none =>
  cases hlength : LengthTarget.ofCommand? command with
  | some target =>
    unfold LengthTarget.ofCommand? at hlength
    have hc : target.command = command := by simpa using List.find?_some hlength
    intro h
    cases h
    exact hc
  | none =>
    dsimp only
    split
    · intro h
      cases h
      rfl
    · intro h
      obtain ⟨i, -, rfl⟩ := Option.map_eq_some_iff.1 h
      rfl
    all_goals
      intro h
      cases h
    all_goals rfl

/-- A length is set if a mode follows that says so. -/
theorem isSome_length (cs : List Nat) (used : Nat) :
    (length ⟨used, cs⟩).1.isSome = true ↔ ∃ mode rest, cs = mode :: rest ∧ mode < 0x7F := by
  cases cs with
  | nil =>
    constructor
    · intro h
      cases h
    · rintro ⟨mode, rest, h, -⟩
      cases h
  | cons c rest =>
    have hmode : (∃ mode tail, c :: rest = mode :: tail ∧ mode < 0x7F) ↔ c < 0x7F := by
      constructor
      · rintro ⟨mode, tail, h, hlt⟩
        cases h
        exact hlt
      · exact fun h => ⟨c, rest, rfl, h⟩
    unfold length
    rw [bind_apply, hmode]
    by_cases hc : c < 128
    · have hindex : index ⟨used, c :: rest⟩ = (some ⟨c, hc⟩, ⟨used + 1, rest⟩) := dif_pos hc
      rw [hindex]
      by_cases hunset : c = 0x7F
      · simp only [hunset, if_true]
        constructor
        · intro h
          cases h
        · exact fun h => absurd h (by decide)
      · simp only [if_neg hunset]
        exact ⟨fun _ => by omega, fun _ => rfl⟩
    · have hindex : index ⟨used, c :: rest⟩ = (none, ⟨used, c :: rest⟩) := dif_neg hc
      rw [hindex]
      constructor
      · intro h
        cases h
      · exact fun h => absurd h (by omega)

private def imageAfter (i : Index) : Reading (Option ImageSetting) := do
  let mode ← indexOrZero
  let offset ← if mode.testBit 2 then some <$> offset else pure none
  let size ← if mode.testBit 3 then some <$> size else pure none
  let margin ← margin (mode.testBit 4) (mode.testBit 5)
  return some ⟨i, ImageAlign.ofCode (mode % 4), offset, size, margin⟩

private theorem exists_imageAfter (i : Index) (cur : Cursor) :
    ∃ image, (imageAfter i cur).1 = some image ∧ image.index = i := by
  simp only [imageAfter, if_bind]
  exact ⟨_, rfl, rfl⟩

/-- An image is read if its number is there. -/
theorem image_index (cs : List Nat) (used : Nat) (P : Nat → Prop) :
    (∃ i, (image ⟨used, cs⟩).1 = some i ∧ P i.index.val) ↔
      ∃ k rest, cs = k :: rest ∧ k < 128 ∧ P k := by
  unfold image
  rw [bind_apply]
  cases cs with
  | nil =>
    constructor
    · rintro ⟨i, h, -⟩
      cases h
    · rintro ⟨k, rest, h, -⟩
      cases h
  | cons c rest =>
    by_cases hc : c < 128
    · have hindex : index ⟨used, c :: rest⟩ = (some ⟨c, hc⟩, ⟨used + 1, rest⟩) := dif_pos hc
      obtain ⟨image, hsome, hnumber⟩ := exists_imageAfter ⟨c, hc⟩ ⟨used + 1, rest⟩
      have hval : image.index.val = c := congrArg Fin.val hnumber
      rw [hindex]
      constructor
      · rintro ⟨i, h, hP⟩
        have hi : image = i := Option.some.inj (hsome.symm.trans h)
        rw [← hi, hval] at hP
        exact ⟨c, rest, rfl, hc, hP⟩
      · rintro ⟨k, tail, h, -, hP⟩
        cases h
        exact ⟨image, hsome, hval.symm ▸ hP⟩
    · have hindex : index ⟨used, c :: rest⟩ = (none, ⟨used, c :: rest⟩) := dif_neg hc
      rw [hindex]
      constructor
      · rintro ⟨i, h, -⟩
        cases h
      · rintro ⟨k, tail, h, hk, -⟩
        cases h
        exact absurd hk hc

end Reading

/-! ### What shows -/

/-- The code points after an introducer set a space of explicit width. -/
def SpaceIsSet (cs : List Nat) : Prop := ∃ mode rest, cs = 0x40 :: mode :: rest ∧ mode < 0x7F

/-- The code points after an introducer ask for a registered image. -/
def ImageIsThere (images : Registry Image) (cs : List Nat) : Prop :=
  ∃ k rest, cs = 0x10 :: k :: rest ∧ k < 128 ∧ images.contains k = true

/-- Code points that are neither text nor newlines. -/
def silent : List Nat :=
  [CodePoint.noncharacter, Control.simpleIntroducer, Control.complexIntroducer,
    Control.rowSeparator, Control.cellSeparator]

/-- Whether the first of these code points puts something on the line. -/
def Shows (images : Registry Image) : List Nat → Prop
  | [] => False
  | c :: rest =>
    (CodePoint.isNewline c = true ∧
        ¬ (c = CodePoint.carriageReturn ∧ rest.head? = some CodePoint.lineFeed)) ∨
      c = CodePoint.placeholder ∨
      (CodePoint.isNewline c = false ∧ c ∉ silent ∧ ∀ t : Toggle, c ≠ t.code) ∨
      (c = Control.complexIntroducer ∧ (SpaceIsSet rest ∨ ImageIsThere images rest))

/-- A setting puts something on the line if it is a space or an image. -/
private theorem signs_setting_ne_nil_iff (images : Registry Image) (i command : Nat)
    (cs : List Nat) :
    Lexeme.signs images ⟨i, (Setting.read command cs).1.elim .nothing (.instruction <| .setting ·)⟩
        ≠ [] ↔ SpaceIsSet (command :: cs) ∨ ImageIsThere images (command :: cs) := by
  have hread : (Setting.read command cs).1 = (Reading.parameters command ⟨0, cs⟩).1 := rfl
  rw [hread]
  constructor
  · intro h
    cases hs : (Reading.parameters command ⟨0, cs⟩).1 with
    | none =>
      rw [hs] at h
      exact absurd rfl h
    | some s =>
      have hcommand := Reading.command_of_parameters hs
      rw [hs] at h
      cases s with
      | length target l =>
        cases target with
        | horizontalSpace =>
          cases l with
          | none => exact absurd rfl h
          | some l =>
            left
            subst hcommand
            have hset : (Reading.length ⟨0, cs⟩).1.isSome = true := by
              have hl : some (Setting.length .horizontalSpace (Reading.length ⟨0, cs⟩).1) =
                some (.length .horizontalSpace (some l)) := hs
              injection hl with hl
              injection hl with _ hl
              rw [hl]
              rfl
            obtain ⟨mode, rest, rfl, hmode⟩ := (Reading.isSome_length cs 0).1 hset
            exact ⟨mode, rest, rfl, hmode⟩
        | _ => exact absurd rfl h
      | image image =>
        right
        subst hcommand
        have hl : (Reading.image ⟨0, cs⟩).1 = some image := by
          have hl : ((Reading.image ⟨0, cs⟩).1).map Setting.image = some (.image image) := hs
          obtain ⟨other, ho, hi⟩ := Option.map_eq_some_iff.1 hl
          injection hi with hi
          rw [ho, hi]
        have hthere : images.contains image.index.val = true := by
          cases hthere : images.contains image.index.val with
          | true => rfl
          | false => exact absurd (if_neg (Bool.not_eq_true _ ▸ hthere)) h
        obtain ⟨k, rest, rfl, hk, himage⟩ :=
          (Reading.image_index cs 0 fun k => images.contains k = true).1 ⟨image, hl, hthere⟩
        exact ⟨k, rest, rfl, hk, himage⟩
      | _ => exact absurd rfl h
  · rintro (⟨mode, rest, h, hmode⟩ | ⟨k, rest, h, hk, himage⟩)
    · injection h with hcommand hcs
      subst hcommand hcs
      have hset := (Reading.isSome_length (mode :: rest) 0).2 ⟨mode, rest, rfl, hmode⟩
      obtain ⟨l, hl⟩ := Option.isSome_iff_exists.1 hset
      have hs : (Reading.parameters 0x40 ⟨0, mode :: rest⟩).1 =
          some (.length .horizontalSpace (Reading.length ⟨0, mode :: rest⟩).1) := rfl
      rw [hs, hl]
      exact List.cons_ne_nil _ _
    · injection h with hcommand hcs
      subst hcommand hcs
      obtain ⟨image, hl, hthere⟩ := (Reading.image_index (k :: rest) 0
        fun k => images.contains k = true).2 ⟨k, rest, rfl, hk, himage⟩
      have hs : (Reading.parameters 0x10 ⟨0, k :: rest⟩).1 =
          ((Reading.image ⟨0, k :: rest⟩).1).map Setting.image := rfl
      rw [hs, hl]
      have hsigns : Lexeme.signs images ⟨i, .instruction (.setting (.image image))⟩ =
          [⟨CodePoint.placeholder, false, i⟩] := if_pos hthere
      rw [Option.map_some, Option.elim_some, hsigns]
      exact List.cons_ne_nil _ _

/-- A code point that is no other token's first one shows unless it is a toggle. -/
private theorem signs_single_ne_nil_iff (images : Registry Image) (i c : Nat) :
    Lexeme.signs images ⟨i, Token.single c⟩ ≠ [] ↔ ∀ t : Toggle, c ≠ t.code := by
  unfold Token.single
  cases ht : Toggle.ofCode? c with
  | some t =>
    have hc := Toggle.ofCode?_eq_some_iff.1 ht
    exact ⟨fun h => absurd rfl h, fun h => absurd hc (h t)⟩
  | none =>
    have hno : ∀ t : Toggle, c ≠ t.code := by
      intro t hc
      rw [Toggle.ofCode?_eq_some_iff.2 hc] at ht
      cases ht
    refine ⟨fun _ => hno, fun _ => ?_⟩
    by_cases hn : CodePoint.isNewline c = true
    · simp only [hn, if_true]
      exact List.cons_ne_nil _ _
    · simp only [if_neg hn]
      exact List.cons_ne_nil _ _

private theorem not_newline_of_toggle (t : Toggle) : CodePoint.isNewline t.code = false := by
  cases t with
  | heading level => cases level <;> decide
  | _ => decide

private theorem not_shows_of_silent {c : Nat} (images : Registry Image) (rest : List Nat)
    (h : c ∈ silent) (hc : c ≠ Control.complexIntroducer) : ¬ Shows images (c :: rest) := by
  have hclass : ∀ c ∈ silent, CodePoint.isNewline c = false ∧ c ≠ CodePoint.placeholder := by
    decide
  obtain ⟨hn, hp⟩ := hclass c h
  rintro (⟨hnl, -⟩ | hpl | ⟨-, hs, -⟩ | ⟨hi, -⟩)
  · rw [hn] at hnl
    cases hnl
  · exact hp hpl
  · exact hs h
  · exact hc hi

/-- Whether a token puts something on the line shows in its first code points. -/
theorem signs_ne_nil_iff (images : Registry Image) (i c : Nat) (rest : List Nat) :
    Lexeme.signs images ⟨i, (Token.read c rest).1⟩ ≠ [] ↔ Shows images (c :: rest) := by
  have passed : ∀ {c : Nat} {rest : List Nat}, c ∈ silent → c ≠ Control.complexIntroducer →
      Lexeme.signs images ⟨i, (Token.read c rest).1⟩ = [] →
      (Lexeme.signs images ⟨i, (Token.read c rest).1⟩ ≠ [] ↔ Shows images (c :: rest)) := by
    intro c rest hs hc hsigns
    exact ⟨fun h => absurd hsigns h, fun h => absurd h (not_shows_of_silent images rest hs hc)⟩
  by_cases hspecial : c ∈ Token.special
  · simp only [Token.special, List.mem_cons, List.not_mem_nil, or_false] at hspecial
    rcases hspecial with rfl | rfl | rfl | rfl | rfl | rfl | rfl
    · exact passed (by decide) (by decide) rfl
    · cases rest with
      | nil =>
        refine ⟨fun h => absurd rfl h, ?_⟩
        rintro (⟨h, -⟩ | h | ⟨-, h, -⟩ | ⟨-, ⟨_, _, h, _⟩ | ⟨_, _, h, _⟩⟩)
        · exact absurd h (by decide)
        · exact absurd h (by decide)
        · exact absurd (by decide) h
        · cases h
        · cases h
      | cons command cs =>
        refine (signs_setting_ne_nil_iff images i command cs).trans ⟨?_, ?_⟩
        · exact fun h => Or.inr (Or.inr (Or.inr ⟨rfl, h⟩))
        · rintro (⟨h, -⟩ | h | ⟨-, h, -⟩ | ⟨-, h⟩)
          · exact absurd h (by decide)
          · exact absurd h (by decide)
          · exact absurd (by decide) h
          · exact h
    · refine passed (by decide) (by decide) ?_
      cases rest with
      | nil => rfl
      | cons command cs =>
        have hread : (Token.read Control.simpleIntroducer (command :: cs)).1 =
            (Switch.ofCommand? command).elim .nothing (.instruction <| .switch ·) := rfl
        rw [hread]
        cases Switch.ofCommand? command <;> rfl
    · -- A carriage return is a newline unless a line feed follows.
      by_cases hlf : rest.head? = some CodePoint.lineFeed
      · have hread : (Token.read CodePoint.carriageReturn rest).1 = .nothing := by
          unfold Token.read
          rw [if_neg (by decide), if_neg (by decide), if_neg (by decide), if_pos ⟨rfl, hlf⟩]
        rw [hread]
        refine ⟨fun h => absurd rfl h, ?_⟩
        rintro (⟨-, h⟩ | h | ⟨h, -⟩ | ⟨h, -⟩)
        · exact absurd ⟨rfl, hlf⟩ h
        · exact absurd h (by decide)
        · exact absurd h (by decide)
        · exact absurd h (by decide)
      · have hread : (Token.read CodePoint.carriageReturn rest).1 =
            .newline CodePoint.carriageReturn := by
          unfold Token.read
          rw [if_neg (by decide), if_neg (by decide), if_neg (by decide),
            if_neg (fun h => hlf h.2), if_neg (by decide), if_neg (by decide), if_neg (by decide)]
          rfl
        rw [hread]
        exact ⟨fun _ => Or.inl ⟨rfl, fun h => hlf h.2⟩, fun _ => List.cons_ne_nil _ _⟩
    · exact passed (by decide) (by decide) rfl
    · exact passed (by decide) (by decide) rfl
    · exact ⟨fun _ => Or.inr (Or.inl rfl), fun _ => List.cons_ne_nil _ _⟩
  · rw [Token.read_of_not_special hspecial, signs_single_ne_nil_iff]
    constructor
    · intro htoggle
      by_cases hn : CodePoint.isNewline c = true
      · left
        refine ⟨hn, ?_⟩
        rintro ⟨rfl, -⟩
        exact hspecial (by decide)
      · have hsub : ∀ d ∈ silent, d ∈ Token.special := by decide
        exact Or.inr (Or.inr (Or.inl
          ⟨Bool.eq_false_iff.2 hn, fun hs => hspecial (hsub c hs), htoggle⟩))
    · rintro (⟨hn, -⟩ | rfl | ⟨-, -, htoggle⟩ | ⟨rfl, -⟩)
      · rintro t rfl
        rw [not_newline_of_toggle] at hn
        cases hn
      · exact absurd (by decide) hspecial
      · exact htoggle
      · exact absurd (by decide) hspecial

/-! ### Signs of a text -/

theorem index_of_mem_signs {images : Registry Image} {l : Lexeme} {σ : Sign}
    (h : σ ∈ l.signs images) : σ.index = l.index ∧ l.signs images = [σ] := by
  obtain ⟨index, token⟩ := l
  revert h
  unfold Lexeme.signs
  split
  · intro h
    rw [List.mem_singleton.1 h]
    exact ⟨rfl, rfl⟩
  · intro h
    rw [List.mem_singleton.1 h]
    exact ⟨rfl, rfl⟩
  · intro h
    rw [List.mem_singleton.1 h]
    exact ⟨rfl, rfl⟩
  · intro h
    rw [List.mem_singleton.1 h]
    exact ⟨rfl, rfl⟩
  · split
    · intro h
      rw [List.mem_singleton.1 h]
      exact ⟨rfl, rfl⟩
    · exact fun h => nomatch h
  · exact fun h => nomatch h

/-- The signs of the marks that a text puts on its lines. -/
def signsOf (images : Registry Image) (cs : List Nat) : List Sign :=
  (lexemes cs).flatMap (Lexeme.signs images)

theorem pairwise_signsOf (images : Registry Image) (cs : List Nat) :
    (signsOf images cs).Pairwise fun σ τ => σ.index < τ.index := by
  refine List.pairwise_flatMap.2 ⟨?_, ?_⟩
  · intro l _
    cases hl : l.signs images with
    | nil => exact .nil
    | cons σ rest =>
      have hsingle := (index_of_mem_signs (hl ▸ List.mem_cons_self : σ ∈ l.signs images)).2
      rw [hl] at hsingle
      rw [hsingle]
      exact List.pairwise_singleton _ _
  · refine (pairwise_lexemes cs).imp ?_
    intro l m hlm σ hσ τ hτ
    rw [(index_of_mem_signs hσ).1, (index_of_mem_signs hτ).1]
    exact hlm

theorem index_lt_of_mem_signsOf {images : Registry Image} {cs : List Nat} {σ : Sign}
    (h : σ ∈ signsOf images cs) : σ.index < cs.length := by
  obtain ⟨l, hl, hσ⟩ := List.mem_flatMap.1 h
  rw [(index_of_mem_signs hσ).1]
  exact index_lt_of_mem_lexemes hl

/-- A code point has a sign if a token starts with it and it shows. -/
theorem exists_mem_signsOf_iff (images : Registry Image) (cs : List Nat) (i : Nat) :
    (∃ σ ∈ signsOf images cs, σ.index = i) ↔
      (∃ l ∈ lexemes cs, l.index = i) ∧ Shows images (cs.drop i) := by
  constructor
  · rintro ⟨σ, h, rfl⟩
    obtain ⟨l, hl, hσ⟩ := List.mem_flatMap.1 h
    obtain ⟨c, rest, hdrop, htoken⟩ := exists_of_mem_lexemes hl
    rw [(index_of_mem_signs hσ).1]
    refine ⟨⟨l, hl, rfl⟩, ?_⟩
    rw [hdrop, ← signs_ne_nil_iff images l.index, ← htoken]
    exact List.ne_nil_of_mem hσ
  · rintro ⟨⟨l, hl, rfl⟩, hshows⟩
    obtain ⟨c, rest, hdrop, htoken⟩ := exists_of_mem_lexemes hl
    rw [hdrop, ← signs_ne_nil_iff images l.index, ← htoken] at hshows
    obtain ⟨σ, hσ⟩ := List.exists_mem_of_ne_nil _ hshows
    exact ⟨σ, List.mem_flatMap.2 ⟨l, hl, hσ⟩, (index_of_mem_signs hσ).1⟩

private theorem single_text_or_newline {c d : Nat}
    (h : Token.single c = .text d ∨ Token.single c = .newline d) : d = c := by
  revert h
  unfold Token.single
  cases Toggle.ofCode? c with
  | some t => exact fun h => h.elim (fun h => nomatch h) fun h => nomatch h
  | none =>
    by_cases hn : CodePoint.isNewline c = true
    · simp only [if_pos hn]
      rintro (h | h)
      · cases h
      · cases h
        rfl
    · simp only [if_neg hn]
      rintro (h | h)
      · cases h
        rfl
      · cases h

private theorem eq_of_read {c d : Nat} {rest : List Nat}
    (h : (Token.read c rest).1 = .text d ∨ (Token.read c rest).1 = .newline d) : d = c := by
  by_cases hspecial : c ∈ Token.special
  · revert h
    unfold Token.read
    split
    · exact fun h => h.elim (fun h => nomatch h) fun h => nomatch h
    split
    · split
      · exact fun h => h.elim (fun h => nomatch h) fun h => nomatch h
      · next command cs =>
        intro h
        cases hs : (Setting.read command cs).1 with
        | none =>
          simp only [hs, Option.elim_none] at h
          exact h.elim (fun h => nomatch h) fun h => nomatch h
        | some s =>
          simp only [hs, Option.elim_some] at h
          exact h.elim (fun h => nomatch h) fun h => nomatch h
    split
    · split
      · exact fun h => h.elim (fun h => nomatch h) fun h => nomatch h
      · next command cs =>
        cases Switch.ofCommand? command with
        | none => exact fun h => h.elim (fun h => nomatch h) fun h => nomatch h
        | some w => exact fun h => h.elim (fun h => nomatch h) fun h => nomatch h
    split
    · exact fun h => h.elim (fun h => nomatch h) fun h => nomatch h
    split
    · exact fun h => h.elim (fun h => nomatch h) fun h => nomatch h
    split
    · exact fun h => h.elim (fun h => nomatch h) fun h => nomatch h
    split
    · exact fun h => h.elim (fun h => nomatch h) fun h => nomatch h
    · exact single_text_or_newline
  · rw [Token.read_of_not_special hspecial] at h
    exact single_text_or_newline h

/-- A newline token is the newline that stands in the text. -/
theorem getElem?_of_newline {cs : List Nat} {l : Lexeme} (hl : l ∈ lexemes cs) {d : Nat}
    (hnewline : l.token = .newline d) : cs[l.index]? = some d := by
  obtain ⟨c, rest, hdrop, htoken⟩ := exists_of_mem_lexemes hl
  rw [eq_of_read (Or.inr (htoken.symm.trans hnewline)), ← List.head?_drop, hdrop, List.head?_cons]

/-- Spaces and tabs, which alone may be left over at a wrap. -/
def Blank (c : Nat) : Prop := CodePoint.isSpace c = true ∨ c = CodePoint.tab

/-- A blank sign is the space or the tab that stands in the text. -/
theorem getElem?_of_blank {images : Registry Image} {cs : List Nat} {σ : Sign}
    (h : σ ∈ signsOf images cs) (hb : Blank σ.code) : cs[σ.index]? = some σ.code := by
  obtain ⟨⟨index, token⟩, hl, hσ⟩ := List.mem_flatMap.1 h
  obtain ⟨c, rest, hdrop, htoken⟩ := exists_of_mem_lexemes hl
  have hc : cs[index]? = some c := by rw [← List.head?_drop, hdrop, List.head?_cons]
  have hplaceholder : ¬ Blank CodePoint.placeholder := by
    rintro (h | h)
    · exact absurd h (by decide)
    · exact absurd h (by decide)
  have hzero : ¬ Blank 0 := by
    rintro (h | h)
    · exact absurd h (by decide)
    · exact absurd h (by decide)
  revert hσ
  unfold Lexeme.signs
  split
  · next d htext =>
    intro hσ
    rw [List.mem_singleton.1 hσ, eq_of_read (Or.inl (htoken.symm.trans htext))]
    exact hc
  · next d hnewline =>
    intro hσ
    rw [List.mem_singleton.1 hσ, eq_of_read (Or.inr (htoken.symm.trans hnewline))]
    exact hc
  · intro hσ
    rw [List.mem_singleton.1 hσ] at hb
    exact absurd hb hplaceholder
  · intro hσ
    rw [List.mem_singleton.1 hσ] at hb
    exact absurd hb hzero
  · split
    · intro hσ
      rw [List.mem_singleton.1 hσ] at hb
      exact absurd hb hplaceholder
    · exact fun hσ => nomatch hσ
  · exact fun hσ => nomatch hσ

end RichText
